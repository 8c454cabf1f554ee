import OrderedBnf.Match.Cursor
import OrderedBnf.Match.Event
import OrderedBnf.Rule.Term
import OrderedBnf.Tree.Node

/-!
# Matchers

A matcher tries to match the text in front of a cursor. If it succeeds it
says where it stopped and which nodes it found; if it fails the text is
untouched. Either way it leaves a state for the observer of events.

The ways to combine matchers are those of parsing expressions. A sequence
goes from left to right and keeps nothing if one part fails. The first
alternative that matches wins, and no later one is tried. A repetition goes
on for as long as it can and never gives back what it took; it also ends
after an iteration that took nothing, because the next would be the same.

The iterations of a repetition are counted in 32 bits, and the counter goes
on from zero when it is full. A repetition that asks for one iteration or
more fails when the counter stands at zero in the end: where there were
none, and also where there were as many as it has values, or a multiple of
that.
-/

namespace OrderedBnf

/-- A successful match. -/
structure Match where
  stop : Cursor
  nodes : List Node
deriving DecidableEq, Repr, Inhabited

/-- An attempt to match at a cursor, with a state of an observer going along. -/
abbrev Matcher (σ : Type) := Cursor → σ → Option Match × σ

variable {σ : Type} {α : Type}

namespace Matcher

/-- A literal matches when it is what comes next. -/
def literal (note : Observer σ) (text : List Char) (source : String) : Matcher σ := fun c s =>
  match c.advance? text with
  | some stop => (some ⟨stop, []⟩, s)
  | none => (none, note s (.miss c.offset source))

/-- What may be left out. -/
def optional (x : Matcher σ) : Matcher σ := fun c s =>
  match x c s with
  | (some m, s) => (some m, s)
  | (none, s) => (some ⟨c, []⟩, s)

/-! ## Repetition -/

/-- What a repetition comes to: the number of its iterations, as far as the
counter tells it, where the last of them stopped, and their nodes. -/
structure Rounds where
  count : Int32
  stop : Cursor
  nodes : List Node
deriving DecidableEq, Repr, Inhabited

/-- Matches again and again, up to a failure or an iteration that takes
nothing, which still counts. Each iteration but the last takes a character
of the text in front, so the characters of `ahead` are as many as the
iterations that can follow the first one. -/
def rounds (x : Matcher σ) (ahead : List Char) (c : Cursor) (s : σ) : Rounds × σ :=
  match x c s with
  | (none, s) => (⟨0, c, []⟩, s)
  | (some m, s) =>
    if m.stop.offset = c.offset then (⟨1, c, m.nodes⟩, s)
    else
      match ahead with
      | [] => (⟨1, m.stop, m.nodes⟩, s)
      | _ :: ahead =>
        let (later, s) := rounds x ahead m.stop s
        (⟨later.count + 1, later.stop, m.nodes ++ later.nodes⟩, s)

/-- As often as possible, perhaps not at all. -/
def zeroOrMore (x : Matcher σ) : Matcher σ := fun c s =>
  let (all, s) := rounds x c.rest c s
  (some ⟨all.stop, all.nodes⟩, s)

/-- As often as possible, once or more by the counter. -/
def oneOrMore (x : Matcher σ) : Matcher σ := fun c s =>
  let (all, s) := rounds x c.rest c s
  (if all.count = 0 then none else some ⟨all.stop, all.nodes⟩, s)

/-- As often as a repetition says. -/
def times : Repetition → Matcher σ → Matcher σ
  | .once, x => x
  | .optional, x => optional x
  | .zeroOrMore, x => zeroOrMore x
  | .oneOrMore, x => oneOrMore x

/-! ## Sequence and choice -/

/-- One thing after another, each from where the one before stopped. -/
def sequence (f : α → Matcher σ) : List α → Matcher σ
  | [], c, s => (some ⟨c, []⟩, s)
  | a :: as, c, s =>
    match f a c s with
    | (none, s) => (none, s)
    | (some m, s) =>
      match sequence f as m.stop s with
      | (none, s) => (none, s)
      | (some later, s) => (some ⟨later.stop, m.nodes ++ later.nodes⟩, s)

/-- The first that matches. -/
def firstOf (f : α → Matcher σ) : List α → Matcher σ
  | [], _, s => (none, s)
  | a :: as, c, s =>
    match f a c s with
    | (some m, s) => (some m, s)
    | (none, s) => firstOf f as c s

end Matcher

end OrderedBnf
